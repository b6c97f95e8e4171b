import Beez.Daemon.Daemon
import Beez.Record.Summary

/-! # What a run of the daemon says about itself

The outcome of a run is made from its events, and so is its record.
-/

open Beez.Core Beez.Lib Beez.Runner

namespace Beez.Daemon

open Beez.Record

/-! ## What `execute` gives -/

/-- What the run of a loaded workflow gives. `directory` is the directory of the run, if its log
opened, and `elapsed` the time that it took. -/
def outcomeOf (directory : Option Text) (elapsed : Text) (result : Except IoError (Option Int))
    (events : List RunEvent) : RunOutcome where
  directory := directory
  status :=
    match result with
    | .ok status => status
    | .error _ => none
  summary := (tallyOf events).summary elapsed
  error :=
    match result with
    | .ok _ => none
    | .error error => some error.message

/-- Runs one job to the end. A log that cannot be written does not end a run, so its callback always
succeeds. -/
def execute (load : Path → Except Text Manifest) (deliver : List RunEvent → List Runner.Job → List Message)
    (job : JobRun) (fuel : Nat) (directory : Option Text) (elapsed : Text) : RunOutcome :=
  match load job.manifest with
  | .error error => failure error
  | .ok manifest =>
    let (result, run) := runWorkflow ⟨fun _ => none, deliver⟩ manifest.workflow fuel
    outcomeOf directory elapsed result run.events

/-- How many tasks of a record are in a state. -/
def tasksIn (state : String) (log : RunLog) : Nat := log.tasks.countP (·.state = state)

/-- The outcome of a run says what its record says. -/
structure Agrees (elapsed : Text) (log : RunLog) (outcome : RunOutcome) : Prop where
  summary : outcome.summary =
    counts (tasksIn "finished" log) (tasksIn "failed" log) (tasksIn "blocked" log) ++ " in ".toList ++ elapsed
  zero : outcome.status = some 0 ↔ ∀ record ∈ log.tasks, record.state = "finished"
  stopped : outcome.status = none ↔ outcome.error ≠ none
  broken : outcome.error ≠ none → ∃ record ∈ log.tasks, record.error ≠ none

theorem Ended.agrees {workflow : Workflow} {ends : Nat → End} {result : Except IoError (Option Int)}
    {run : Run} (ended : Ended workflow ends result run) (directory : Option Text) (elapsed : Text) :
    Agrees elapsed (recordOf workflow run.events) (outcomeOf directory elapsed result run.events) := by
  obtain ⟨known, settles⟩ := Record.Ended.settles ended
  have zero := Record.Ended.zero_iff ended
  refine ⟨?_, ?_, ?_, ?_⟩
  · unfold outcomeOf RunTally.summary tasksIn
    dsimp only
    rw [tallyOf_eq, countP_recordOf known settles (by decide) (by decide),
      countP_recordOf known settles (by decide) (by decide),
      countP_recordOf known settles (by decide) (by decide)]
  · rw [← zero]
    cases result <;> simp [outcomeOf]
  · cases ended <;> simp [outcomeOf]
  · intro stopped
    cases ended with
    | closed => exact absurd rfl stopped
    | broken known ran absent healthy unhealthy =>
      obtain ⟨i, below, failed⟩ := unhealthy
      obtain ⟨outcome, hend, ran⟩ := ran i below
      cases outcome with
      | ok output => simp [endOf, failed] at hend
      | error error =>
        have found := recordOf_getElem? known i
        rw [List.getElem?_eq_getElem below.1] at found
        refine ⟨_, List.mem_of_getElem? found, ?_⟩
        rw [Record.Ran.error_on_record ran]
        simp

/-- The status, the summary and the record of a run of the daemon agree, whatever its tasks do and in
whatever order they end. -/
theorem execute_agrees {load : Path → Except Text Manifest} {job : JobRun} {manifest : Manifest}
    {deliver : List RunEvent → List Runner.Job → List Message} {ends : Nat → End} {fuel : Nat}
    (loaded : load job.manifest = .ok manifest) (delivers : World.Delivers ⟨fun _ => none, deliver⟩)
    (hends : World.Ends ⟨fun _ => none, deliver⟩ ends) (enough : manifest.workflow.tasks.length < fuel)
    (directory : Option Text) (elapsed : Text) :
    Agrees elapsed
      (recordOf manifest.workflow (runWorkflow ⟨fun _ => none, deliver⟩ manifest.workflow fuel).2.events)
      (execute load deliver job fuel directory elapsed) := by
  have ended := runWorkflow_ended delivers hends enough fun error h => by cases h
  unfold execute
  rw [loaded]
  exact Ended.agrees ended directory elapsed

def buildAndTestManifest : Manifest where
  workflow := buildAndTestWorkflow
  schedules := []
  namedApart := ⟨fun h => absurd h (by decide), .nil⟩

def buildAndTestRun : JobRun := ⟨"daily".toList, ["daily.md"], [], [".beez"], 0⟩

theorem execute_agrees_buildAndTest :
    Agrees "3 ms".toList
      (recordOf buildAndTestManifest.workflow
        (runWorkflow ⟨fun _ => none, (World.immediate passThenSignal).deliver⟩
          buildAndTestManifest.workflow 3).2.events)
      (execute (fun _ => .ok buildAndTestManifest) (World.immediate passThenSignal).deliver
        buildAndTestRun 3 none "3 ms".toList) := by
  have loaded : (fun _ : Path => (.ok buildAndTestManifest : Except Text Manifest))
      buildAndTestRun.manifest = .ok buildAndTestManifest := rfl
  have enough : buildAndTestManifest.workflow.tasks.length < 3 := Nat.lt_succ_self 2
  exact @execute_agrees (fun _ => .ok buildAndTestManifest) buildAndTestRun buildAndTestManifest
    (World.immediate passThenSignal).deliver (fun i => endOf (passThenSignal i)) 3 loaded
    (immediate_delivers passThenSignal) (immediate_ends passThenSignal) enough none "3 ms".toList

end Beez.Daemon
