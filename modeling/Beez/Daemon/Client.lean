import Beez.Daemon.Daemon

/-! # Commands, with a daemon and without -/

namespace Beez.Daemon

/-! ## What a command finds -/

/-- The path of a manifest as it is typed. -/
inductive Typed where
  | absolute (path : Path)
  | relative (names : List String)
deriving DecidableEq, Repr

def Typed.display : Typed → Text
  | .absolute path => path.display
  | .relative names => List.intercalate ['/'] (names.map String.toList)

/-- Every watched path is absolute. -/
def Registry.watchesTyped (registry : Registry) : Typed → Bool
  | .absolute path => registry.watches path
  | .relative _ => false

def Registry.removeTyped (registry : Registry) : Typed → Bool × Registry
  | .absolute path => registry.remove path
  | .relative _ => (false, registry)

/-- The host of a command. -/
structure Terminal extends Host where
  canonicalize : Typed → Except Text Path
  /-- `paths.create()`. -/
  create : Except Text Unit
  /-- Why the state cannot be read or written, where it cannot. -/
  stateError : Text

inductive Command where
  | add (manifest : Typed)
  | remove (manifest : Typed)
  | pause (job : Text)
  | resume (job : Text)
deriving DecidableEq, Repr

def Command.hold (job : Text) : Bool → Command
  | true => .pause job
  | false => .resume job

/-- Where the manifest is and where its tasks run, or what `add` answers instead. -/
def Terminal.watched (terminal : Terminal) (manifest : Typed) : Except Text (Except Text Watched) :=
  (terminal.canonicalize manifest).map fun (path : Path) =>
    if path = [] then .error (path.display ++ " has no directory".toList)
    else .ok ⟨path, path.dropLast⟩

/-! ## Without a daemon -/

inductive Write where
  | registry (registry : Registry)
  | states (states : States)

/-- What a command does once it has read the files. -/
inductive Prepared where
  | answer (response : Response)
  /-- Writes a file, where `creates` says so into a directory that it makes first. -/
  | save (creates : Bool) (write : Write) (message : Text)

def prepareAdd (terminal : Terminal) (registry : Registry) (states : States) (watched : Watched) :
    Prepared :=
  let others := (registry.manifests.filter (·.path ≠ watched.path)).flatMap fun other =>
    ids (jobsOf terminal.load other states)
  match admitJobs (jobsOf terminal.load watched states) others with
  | .error error => .answer (.error error)
  | .ok _ =>
    let (added, registry) := registry.add watched
    .save true (.registry registry) (Message.watching watched.path added ++
      ", and the daemon reads it when it starts".toList)

/-- The path that `remove` goes by. -/
def removedPath (terminal : Terminal) (registry : Registry) (manifest : Typed) : Typed :=
  -- A manifest that is gone cannot be resolved, so the path as typed counts too.
  let canonical := match terminal.canonicalize manifest with
    | .ok path => .absolute path
    | .error _ => manifest
  if registry.watchesTyped canonical then canonical else manifest

def prepareRemove (terminal : Terminal) (registry : Registry) (manifest : Typed) : Prepared :=
  let path := removedPath terminal registry manifest
  match registry.removeTyped path with
  | (false, _) => .answer (.error (path.display ++ " is not watched".toList))
  | (true, registry) => .save false (.registry registry) ("stopped watching ".toList ++ path.display)

def prepareHold (terminal : Terminal) (registry : Registry) (states : States) (id : Text)
    (paused : Bool) : Prepared :=
  if (build terminal.load terminal.modified registry states).2.any (·.id = id) then
    .save true (.states (states.set id { states.get id with paused })) (Message.held id paused)
  else .answer (.unknownJob id)

def Terminal.loadStates (terminal : Terminal) (files : Files) : Except Text States :=
  match files.states.reread with
  | some states => .ok states
  | none => .error terminal.stateError

def Files.prepare (files : Files) (terminal : Terminal) : Command → Except Text Prepared
  | .add manifest => do
    match ← terminal.watched manifest with
    | .error message => return .answer (.error message)
    | .ok watched => return prepareAdd terminal (← files.registry) (← terminal.loadStates files) watched
  | .remove manifest => return prepareRemove terminal (← files.registry) manifest
  | .pause job => return prepareHold terminal (← files.registry) (← terminal.loadStates files) job true
  | .resume job =>
    return prepareHold terminal (← files.registry) (← terminal.loadStates files) job false

def Files.write (files : Files) : Write → Files
  | .registry registry => { files with registry := .ok registry }
  | .states states => { files with states }

/-- Whether a write succeeds. -/
def Terminal.saves (terminal : Terminal) : Write → Except Text Unit
  | .registry _ => terminal.registryWrite
  | .states states => if terminal.stateWrite states then .ok () else .error terminal.stateError

def Files.finish (files : Files) (terminal : Terminal) : Prepared → Except Text Response × Files
  | .answer response => (.ok response, files)
  | .save creates write message =>
    match if creates then terminal.create else .ok () with
    | .error error => (.error error, files)
    | .ok _ =>
      match terminal.saves write with
      | .error error => (.error error, files)
      | .ok _ => (.ok (.done message), files.write write)

/-- Applies a command to the files. -/
def Files.command (files : Files) (terminal : Terminal) (command : Command) :
    Except Text Response × Files :=
  match files.prepare terminal command with
  | .error error => (.error error, files)
  | .ok prepared => files.finish terminal prepared

/-! ## With a daemon -/

/-- `Daemon::remove` of the path as it was typed. -/
def removeTyped (daemon : Daemon) (host : Host) : Typed → Response × Daemon
  | .absolute path => daemon.remove host path
  -- No entry of the list has a relative path, so none goes.
  | .relative names => (.error ((Typed.relative names).display ++ " is not watched".toList), daemon)

/-- Sends a command to the daemon. -/
def receive [CronCrate] (daemon : Daemon) (terminal : Terminal) :
    Command → Except Text Response × Daemon
  | .add manifest =>
    match terminal.watched manifest with
    | .error error => (.error error, daemon)
    | .ok (.error message) => (.ok (.error message), daemon)
    | .ok (.ok watched) =>
      let (response, daemon) :=
        daemon.command terminal.toHost (.add watched.path watched.workingDirectory)
      (.ok response, daemon)
  | .remove manifest =>
    let (response, daemon) := daemon.removeTyped terminal.toHost manifest
    (.ok response, daemon)
  | .pause job =>
    let (response, daemon) := daemon.command terminal.toHost (.pause job)
    (.ok response, daemon)
  | .resume job =>
    let (response, daemon) := daemon.command terminal.toHost (.resume job)
    (.ok response, daemon)

def succeeds : Except Text Response → Bool
  | .ok (.done _) => true
  | _ => false

end Beez.Daemon
