import Beez.Path
import Beez.Schedule.Cron

/-! # The commands that reach a running daemon -/

namespace Beez.Daemon

/-! ## The lines a command answers with -/

namespace Message

def notWatched (manifest : Path) : Text := manifest.display ++ " is not watched".toList

def watching (manifest : Path) (added : Bool) : Text :=
  (if added then "watching" else "read again").toList ++ ' ' :: manifest.display

def stoppedWatching (manifest : Path) : Text := "stopped watching ".toList ++ manifest.display

def held (job : Text) (paused : Bool) : Text :=
  (if paused then "paused" else "resumed").toList ++ ' ' :: job

def takenId (job : Text) : Text :=
  "job ".toList ++ job ++ " already comes from another manifest".toList

def unknownJob (job : Text) : Text := "no job named ".toList ++ job

def unwritableRegistry (error : Text) : Text :=
  "cannot write the manifest list: ".toList ++ error

end Message

/-! ## Requests and responses -/

/-- What a command asks the daemon to do. -/
inductive Request where
  | status
  | add (manifest workingDirectory : Path)
  | remove (manifest : Path)
  | pause (job : Text)
  | resume (job : Text)
  | trigger (job : Text)
  | reload
  | stop
deriving DecidableEq, Repr

/-- One job, as a command reports it. An instant stays a number, and a schedule itself. -/
structure JobReport where
  id : Text
  manifest : Text
  schedule : Option Schedule
  condition : String
  nextFire : Option Int
  lastFire : Option Int
  lastRun : Option Text
  lastStatus : Option Int
  error : Option Text
deriving DecidableEq

/-- What the daemon answers. -/
inductive Response where
  | status (started : Int) (running : Nat) (jobs : List JobReport)
  | done (message : Text)
  | error (message : Text)
deriving DecidableEq

namespace Response

def unknownJob (job : Text) : Response := .error (Message.unknownJob job)

end Response

end Beez.Daemon
