import Beez.Lib.Machine
import Beez.Sandbox.Held

/-! # Sandboxed runs that share mask directories

Each run takes one step on the file system at a time, in any order with the steps of the others.
-/

open Beez.Lib

namespace Beez.Sandbox

/-! ## One run -/

/-- The walk of `mask_directories` from one denied path up. -/
structure Walk where
  path : Path
  /-- The directories it needs so far, deepest first. -/
  gathered : List Path
  rest : List Path
  /-- `exists` has answered true for the first of the rest. -/
  seen : Bool
deriving DecidableEq, Repr

/-- Where a run stands. `attempts` counts those that `mark_in_use` has left. -/
inductive Phase where
  /-- In `MaskPlan::of`. -/
  | planning (walk : Walk) (denied : List Path)
  /-- In `bwrap_arguments`, at the write denies. -/
  | binding (denied : List Path)
  | creating (attempts : Nat) (mask : Mask) (masks : List Mask)
  | marking (attempts : Nat) (left written : List Path) (mask : Mask) (masks : List Mask)
  | cleaning (left : List Path) (masks : List Mask)
  | ready
  | running
  /-- In the drop of `HeldMasks`. -/
  | unmarking (left : List Path)
  | removing (left : List Path)
  | ended
deriving DecidableEq, Repr

structure MaskRun where
  pid : Nat
  sequence : Nat
  resolved : ResolvedSandbox
  plan : MaskPlan
  /-- The write denies that are bound onto themselves. -/
  bound : List Path
  held : HeldMasks
  phase : Phase
deriving DecidableEq, Repr

inductive Effect where
  | look
  | create (path : Path)
  | mark (directory : Path)
  | clean (directory : Path)
  | unmark (marker : Path)
  | remove (directory : Path)
deriving DecidableEq, Repr

def Effect.apply (alive : Text → Bool) (name : String) (tree : Tree) : Effect → Tree
  | look => tree
  | create path => tree.createDirAll path
  | mark directory => tree.writeFile (directory ++ [name])
  | clean directory => removeDeadMarkers alive tree directory
  | unmark marker => tree.removeFile marker
  | remove directory => tree.removeDir directory

namespace MaskRun

def name (run : MaskRun) : String := markerName run.pid run.sequence

def targets (run : MaskRun) : List Path := run.plan.map (·.path) ++ run.bound

def effect (run : MaskRun) : Effect :=
  match run.phase with
  | .creating _ mask _ => .create mask.path
  | .marking _ (directory :: _) _ _ _ => .mark directory
  | .cleaning (directory :: _) _ => .clean directory
  | .unmarking (marker :: _) => .unmark marker
  | .removing (directory :: _) => .remove directory
  | _ => .look

def planNext (run : MaskRun) : List Path → MaskRun
  | [] => { run with phase := .binding run.resolved.writeDeny }
  | path :: denied => { run with phase := .planning ⟨path, [], Path.ancestors path, false⟩ denied }

/-- The walk has found a directory with content of its own, or has passed the root. -/
def finishWalk (run : MaskRun) (walk : Walk) (denied : List Path) : MaskRun :=
  planNext
    { run with
      plan := if walk.gathered = [] then run.plan
        else run.plan ++ [Mask.mk walk.path walk.gathered] } denied

def planStep (run : MaskRun) (tree : Tree) (walk : Walk) (denied : List Path) : MaskRun :=
  match walk.rest with
  | [] => run.finishWalk walk denied
  | directory :: rest =>
    if walk.seen = false ∧ tree.isPresent directory = true then
      { run with phase := .planning { walk with seen := true } denied }
    else if walk.seen = true ∧ tree.isMarked directory = false then run.finishWalk walk denied
    else
      { run with
        phase := .planning
          { walk with gathered := walk.gathered ++ [directory], rest, seen := false } denied }

def holdNext (run : MaskRun) : List Mask → MaskRun
  | [] => { run with phase := .ready }
  | mask :: masks => { run with phase := .creating (markAttempts - 1) mask masks }

/-- Another run has taken a directory away, so the attempt is made again. -/
def retry (run : MaskRun) (attempts : Nat) (mask : Mask) (masks : List Mask) : MaskRun :=
  match attempts with
  | 0 => run.holdNext masks
  | attempts + 1 => { run with phase := .creating attempts mask masks }

/-- How the run goes on once its step has left the host as `tree`. -/
def advance (run : MaskRun) (tree : Tree) : MaskRun :=
  match run.phase with
  | .planning walk denied => run.planStep tree walk denied
  | .binding [] => run.holdNext run.plan
  | .binding (path :: denied) =>
    if run.plan.covers path = false ∧ tree.isPresent path = true then
      { run with bound := run.bound ++ [path], phase := .binding denied }
    else { run with phase := .binding denied }
  | .creating attempts mask masks =>
    if tree.isDir mask.path then
      { run with phase := .marking attempts mask.directories.reverse [] mask masks }
    else run.holdNext masks
  | .marking attempts (directory :: left) written mask masks =>
    if tree.entry (directory ++ [run.name]) = some .file then
      { run with phase := .marking attempts left (written ++ [directory ++ [run.name]]) mask masks }
    else run.retry attempts mask masks
  | .marking _ [] written mask masks =>
    { run with
      held := ⟨run.held.markers ++ written, run.held.directories ++ mask.directories⟩
      phase := .cleaning mask.directories masks }
  | .cleaning (_ :: left) masks => { run with phase := .cleaning left masks }
  | .cleaning [] masks => run.holdNext masks
  | .ready => { run with phase := .running }
  | .running => { run with phase := .unmarking run.held.markers }
  | .unmarking (_ :: left) => { run with phase := .unmarking left }
  | .unmarking [] => { run with phase := .removing run.held.directories }
  | .removing (_ :: left) => { run with phase := .removing left }
  | .removing [] => { run with phase := .ended }
  | .ended => run

def opened (pid sequence : Nat) (resolved : ResolvedSandbox) : MaskRun :=
  planNext ⟨pid, sequence, resolved, [], [], ⟨[], []⟩, .ended⟩
    (resolved.writeDeny.filter resolved.insideWriteAllow)

end MaskRun

/-! ## Any number of runs -/

structure Runs where
  tree : Tree
  runs : List MaskRun

inductive RunsEvent where
  | begin (pid sequence : Nat) (resolved : ResolvedSandbox)
  /-- A run takes its next step, while `/proc` has the entries that `alive` answers for. -/
  | act (number : Nat) (alive : Text → Bool)
  /-- `bwrap` does not start, and the run gives its masks back. -/
  | giveUp (number : Nat)

/-- Processes with unended runs are alive. -/
def Runs.alive (world : Runs) (alive : Text → Bool) : Bool :=
  world.runs.all fun run => run.phase == .ended || alive (decimal run.pid)

def Runs.step (world : Runs) : RunsEvent → Runs
  | .begin pid sequence resolved =>
    -- The sequence of a process counts up, so no two of its runs have the same number.
    if world.runs.any fun run => run.pid == pid && run.sequence == sequence then world
    else { world with runs := world.runs ++ [.opened pid sequence resolved] }
  | .act number alive =>
    match world.runs[number]? with
    | none => world
    | some run =>
      if world.alive alive then
        let tree := run.effect.apply alive run.name world.tree
        { tree, runs := world.runs.set number (run.advance tree) }
      else world
  | .giveUp number =>
    match world.runs[number]? with
    | none => world
    | some run =>
      if run.phase = .ready then
        { world with
          runs := world.runs.set number { run with phase := .unmarking run.held.markers } }
      else world

end Beez.Sandbox
