import Beez.Core.Execution
import Mathlib.Data.List.Sort

/-! # Running a workflow -/

open Beez.Core

namespace Beez.Runner

/-! ## Processes -/

/-- The categories of `io::ErrorKind` that a process can fail to start or to be read with. -/
inductive ErrorKind where
  | notFound | permissionDenied | brokenPipe | alreadyExists | invalidInput | invalidData | timedOut
  | interrupted | unsupported | unexpectedEof | outOfMemory | other
deriving DecidableEq, Repr

structure IoError where
  kind : ErrorKind
  message : Text
deriving DecidableEq

/-- `io::Error::other`. -/
def IoError.ofText (message : String) : IoError := ⟨.other, message.toList⟩

inductive OutputStream where
  | stdout | stderr
deriving DecidableEq, Repr

/-- Captured process result. A process that a signal ended has no status code. -/
structure ProcessOutput where
  statusCode : Option Int
  stdout : List Byte
  stderr : List Byte
deriving DecidableEq, Repr

structure HarnessCall where
  harness : HeadlessHarness
  prompt : Text
  model : Option String
  effort : Option String
deriving DecidableEq

structure ProcessCall where
  program : Text
  arguments : List Text
deriving DecidableEq

inductive ExecutionRequest where
  | harness (call : HarnessCall)
  | command (call : ProcessCall)
deriving DecidableEq

/-- Uses the model and the effort the options name. -/
def HarnessCall.withOptions (call : HarnessCall) (options : HarnessOptions) : HarnessCall :=
  { call with
    model := options.model.or call.model
    effort := options.effort.or call.effort }

def executionRequest : TaskRequest → ExecutionRequest
  | .harness harness prompt options =>
    .harness (HarnessCall.withOptions ⟨harness, prompt, none, none⟩ options)
  | .command program arguments => .command ⟨program, arguments⟩

/-! ## Events -/

/-- Reports a process execution lifecycle event. A time is a number of nanoseconds. -/
inductive RunEvent where
  | started (task : Option Nat)
  | output (task : Option Nat) (stream : OutputStream) (line : List Byte)
  | finished (task : Option Nat) (output : ProcessOutput) (elapsed : Nat)
  | failed (task : Option Nat) (errorKind : ErrorKind) (elapsed : Nat)
  | blocked (task : Nat)
deriving DecidableEq, Repr

/-- The workflow task this event belongs to, when it belongs to one. -/
def RunEvent.task : RunEvent → Option Nat
  | .started task | .output task _ _ | .finished task _ _ | .failed task _ _ => task
  | .blocked task => some task

/-- The position of a workflow task, or zero for a direct request. -/
def positionOf (task : Option Nat) : Nat := task.getD 0

def RunEvent.position (event : RunEvent) : Nat := positionOf event.task

/-- One request to run, with the task it belongs to. -/
structure Job where
  task : Option Nat
  request : ExecutionRequest
  sandbox : Option SandboxPolicy
deriving DecidableEq

/-- A finished request's captured output, or the error that stopped it. -/
abbrev Outcome := Except IoError ProcessOutput

/-- What a task thread sends back while it runs. -/
inductive Message where
  | line (task : Option Nat) (stream : OutputStream) (line : List Byte)
  | done (task : Option Nat) (result : Outcome) (elapsed : Nat)

def Message.task : Message → Option Nat
  | .line task _ _ | .done task _ _ => task

def Message.isLine : Message → Bool
  | .line .. => true
  | .done .. => false

/-- The event that reports a message. -/
def Message.event : Message → RunEvent
  | .line task stream bytes => .output task stream bytes
  | .done task (.ok output) elapsed => .finished task output elapsed
  | .done task (.error error) elapsed => .failed task error.kind elapsed

def Message.outcome : Message → Option (Option Nat × Outcome)
  | .line .. => none
  | .done task result _ => some (task, result)

/-- What runs beside the runner: the caller's callback, which may fail at any event, and the
threads that run the jobs. Both may depend on everything that was reported before. -/
structure World where
  callback : List RunEvent → Option IoError
  deliver : List RunEvent → List Job → List Message

/-- What the channel hands over for `jobs`: the lines of each job in turn and then its result,
the jobs mixed in any order. -/
structure Interleaves (jobs : List Job) (messages : List Message) : Prop where
  known : ∀ message ∈ messages, ∃ job ∈ jobs, job.task = message.task
  whole : ∀ job ∈ jobs, ∃ lines result elapsed, (∀ line ∈ lines, line.isLine = true) ∧
    messages.filter (·.task = job.task) = lines ++ [.done job.task result elapsed]

/-- Every job with a task of its own runs to its end on a thread of its own. -/
def World.Delivers (world : World) : Prop :=
  ∀ events jobs, (jobs.map (·.task)).Nodup → Interleaves jobs (world.deliver events jobs)

/-! ## The runner -/

/-- The local state of `run_workflow`, with the events that the callback was given. -/
structure Run where
  execution : WorkflowExecution
  outputs : Nat → Option ProcessOutput
  exitStatus : Int
  events : List RunEvent

abbrev RunM := ExceptT IoError (StateM Run)

/-- Gives one event to the callback. -/
def emit (world : World) (event : RunEvent) : RunM Unit := do
  modify fun run => { run with events := run.events ++ [event] }
  match world.callback (← get).events with
  | some error => throw error
  | none => return ()

/-- The status a request counts as. A signal or an execution error counts as 1. -/
def taskStatus : Outcome → Int
  | .ok output => output.statusCode.getD 1
  | .error _ => 1

def ProcessOutput.stream (output : ProcessOutput) : TaskOutput → List Byte
  | .stdout => output.stdout
  | .stderr => output.stderr

/-- One captured stream as text, without the newlines that end it. -/
def outputText (output : ProcessOutput) (stream : TaskOutput) : Text :=
  Text.trimEndMatches ['\r', '\n'] (Text.fromUtf8Lossy (output.stream stream))

/-- Fills the output placeholders of one text from the finished tasks. -/
def renderText (workflow : Workflow) (outputs : Nat → Option ProcessOutput) (text : Text) :
    Except IoError Text :=
  match Template.parse text with
  | .error error => .error ⟨.other, error.display⟩
  | .ok template =>
    match template.render fun reference => do
        let output ← outputs (← workflow.indexOf reference.task)
        return outputText output reference.output with
    | .error reference => .error ⟨.other, reference.display ++ " has no output yet".toList⟩
    | .ok text => .ok text

/-- Fills the output placeholders of a request from the finished tasks. -/
def renderRequest (workflow : Workflow) (request : TaskRequest)
    (outputs : Nat → Option ProcessOutput) : Except IoError TaskRequest :=
  request.tryMapTexts (renderText workflow outputs)

/-- A started task's request and sandbox. -/
structure StartedTask where
  index : Nat
  request : TaskRequest
  sandbox : Option SandboxPolicy
deriving DecidableEq

/-- One turn of `start_ready_tasks`. -/
def startTask (world : World) (index : Nat) : RunM StartedTask := do
  match (← get).execution.start index with
  | none => throw (IoError.ofText "workflow task is not ready")
  | some (task, execution) =>
    modify ({ · with execution := execution })
    emit world (.started (some index))
    return ⟨index, task.request, task.sandbox⟩

/-- Marks ready tasks as running and returns their requests. -/
def startReadyTasks (world : World) : RunM (List StartedTask) := do
  (← get).execution.ready.mapM (startTask world)

def prepare (workflow : Workflow) (outputs : Nat → Option ProcessOutput) (task : StartedTask) :
    Except IoError Job := do
  let request ← renderRequest workflow task.request outputs
  return ⟨some task.index, executionRequest request, task.sandbox⟩

/-- The loop over the channel. Outcomes come back in completion order. -/
def receive (world : World) : List Message → RunM (List (Option Nat × Outcome))
  | [] => return []
  | .line task stream bytes :: rest => do
    emit world (.output task stream bytes)
    receive world rest
  | .done task (.ok output) elapsed :: rest => do
    emit world (.finished task output elapsed)
    return (task, .ok output) :: (← receive world rest)
  | .done task (.error error) elapsed :: rest => do
    emit world (.failed task error.kind elapsed)
    return (task, .error error) :: (← receive world rest)

/-- Runs requests concurrently, reporting each line and each result as it arrives. -/
def runRequestsConcurrently (world : World) (jobs : List Job) :
    RunM (List (Option Nat × Outcome)) := do
  receive world (world.deliver (← get).events jobs)

/-- `outputs.insert(index, output)`. -/
def insertOutput (outputs : Nat → Option ProcessOutput) (index : Nat) (output : ProcessOutput) :
    Nat → Option ProcessOutput :=
  fun i => if i = index then some output else outputs i

/-- One turn of the loop of `record_outcomes`, which carries the first execution error. -/
def recordOutcome (readTasks : List Nat) (executionError : Option IoError) :
    Option Nat × Outcome → RunM (Option IoError)
  | (none, _) => return executionError
  | (some index, outcome) => do
    let run ← get
    let status := taskStatus outcome
    match run.execution.complete index (status == 0) with
    | none => throw (IoError.ofText "workflow task is not running")
    | some execution =>
      match outcome with
      | .ok output =>
        let outputs :=
          if index ∈ readTasks then insertOutput run.outputs index output else run.outputs
        let exitStatus := if status ≠ 0 ∧ run.exitStatus = 0 then status else run.exitStatus
        set { run with execution, outputs, exitStatus }
        return executionError
      | .error error =>
        set { run with execution }
        return executionError.or (some error)

/-- Records task outcomes in declaration order and picks the workflow exit status. -/
def recordOutcomes (readTasks : List Nat) (outcomes : List (Option Nat × Outcome)) : RunM Unit := do
  let sorted := outcomes.insertionSort fun a b => positionOf a.1 ≤ positionOf b.1
  match ← sorted.foldlM (recordOutcome readTasks) none with
  | some error => throw error
  | none => return ()

/-- The tasks whose output some other task reads. -/
def readTasks (workflow : Workflow) : List Nat := workflow.tasks.flatMap (·.reads)

/-- One turn of the loop of `run_workflow`. It returns the status when the run is over. -/
def turn (world : World) (workflow : Workflow) : RunM (Option Int) := do
  let tasks ← startReadyTasks world
  if tasks = [] then
    -- Tasks stay pending only when a dependency failed, which already set the status.
    forM (← get).execution.pending fun index => emit world (.blocked index)
    return some (← get).exitStatus
  else
    let jobs ← (tasks.mapM (prepare workflow (← get).outputs) : Except IoError (List Job))
    let outcomes ← runRequestsConcurrently world jobs
    recordOutcomes (readTasks workflow) outcomes
    return none

/-- The loop of `run_workflow`. Nothing when `fuel` turns were too few. -/
def runLoop (world : World) (workflow : Workflow) : Nat → RunM (Option Int)
  | 0 => return none
  | fuel + 1 => do
    if (← get).execution.hasPending then
      match ← turn world workflow with
      | some status => return some status
      | none => runLoop world workflow fuel
    else return some (← get).exitStatus

def Run.initial (workflow : Workflow) : Run := ⟨workflow.execution, fun _ => none, 0, []⟩

/-- Runs ready workflow tasks concurrently until completion. -/
def runWorkflow (world : World) (workflow : Workflow) (fuel : Nat) :
    Except IoError (Option Int) × Run :=
  runLoop world workflow fuel (Run.initial workflow)

end Beez.Runner
